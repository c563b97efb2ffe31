import GraphBoard.Scalar.Double
import GraphBoard.Proofs.Graph.Style
import GraphBoard.Proofs.Session.Run
import GraphBoard.Proofs.View.Gesture

/-!
# GraphBoard.Proofs.Session.Style

The style of an edge follows the node it leaves, however a board is used. By itself an event can
break this: it can lead an edge away to another source, and the edge keeps its kind. The board never
reports such an event, because the edge that is drawn in place of another starts where the other
did.

* `View.SourceKept` — this of the edge being drawn; `SourceKept.step` says that it stays so;
* `Source.keepsSource` — so every event of the board leaves edges at their sources;
* `styled_run` — so the graph of a board in use stays styled.
-/

namespace GraphBoard

variable {α : Type} [Scalar α]

/-! ## Events that keep to the source -/

/-- An event that leads an edge elsewhere names the node that the edge leaves already. -/
def Event.KeepsSource : Event α → Prop
  | .swapEdge edge source _ => source = edge.source
  | _ => True

/-- An event that keeps to the source keeps the edges styled. -/
theorem Editor.styled_apply {s : Editor α} (hvalid : s.graph.Valid) (h : s.graph.Styled)
    {e : Event α} (he : e.KeepsSource) : (s.apply e).1.graph.Styled := by
  have hone {d : Graph.Edit α} (hd : d.Styles s.graph) : (s.graph.editAll [d]).Styled :=
    h.edit hvalid hd
  rw [graph_apply]
  cases e with
  | createNode p => exact hone trivial
  | updateNode k p => exact hone trivial
  | deleteNode k => exact hone trivial
  | deleteSelected =>
      have hdeletes : ∀ d ∈ deletions s.selection, ∀ g : Graph α, d.Styles g := by
        intro d hd g
        simp only [deletions, List.mem_append, List.mem_map] at hd
        obtain ⟨k, -, rfl⟩ | ⟨k, -, rfl⟩ := hd <;> trivial
      have hboth : (s.graph.editAll (deletions s.selection)).Valid ∧
          (s.graph.editAll (deletions s.selection)).Styled :=
        Graph.editAll_preserves (P := fun g => g.Valid ∧ g.Styled) ⟨hvalid, h⟩
          fun g hg d hd => ⟨hg.1.edit d, hg.2.edit hg.1 (hdeletes d hd g)⟩
      exact hboth.2
  | createEdge source target =>
      rw [edits]
      cases hnode : s.graph.node? source with
      | none => exact h
      | some n =>
          have hmem : n ∈ s.graph.nodes := List.mem_of_find?_eq_some hnode
          have hkey : n.key = source := by simpa using List.find?_some hnode
          exact hone ⟨n, hmem, hkey, rfl⟩
  | swapEdge edge source target => exact hone he
  | deleteEdge edge => exact hone trivial
  | paste p => exact hone trivial
  | _ => exact h

namespace Editor

/-- A graph that is brought in is valid and styled, and an event keeps to the source. -/
def Action.KeepsStyle : Action α → Prop
  | .event e => e.KeepsSource
  | .replaceGraph g => g.Valid ∧ g.Styled
  | _ => True

/-- An action that keeps the style keeps the edges styled. -/
theorem styled_perform {s : Editor α} (hvalid : s.graph.Valid) (h : s.graph.Styled)
    {a : Action α} (ha : a.KeepsStyle) : (s.perform a).1.graph.Styled := by
  cases a with
  | event e => exact styled_apply hvalid h ha
  | replaceGraph g => exact ha.2
  | addStartNode => exact Graph.Styled.edit (e := .insertStartNode) h hvalid trivial
  | deleteStartNode =>
      show s.deleteStartNode.1.graph.Styled
      rw [graph_deleteStartNode]
      exact h.edit hvalid trivial

omit [Scalar α] in
/-- An action that keeps the style keeps to valid graphs. -/
theorem Action.KeepsStyle.valid {a : Action α} (ha : a.KeepsStyle) : a.Valid := by
  cases a with
  | replaceGraph g => exact ha.1
  | _ => trivial

end Editor

/-! ## The edge being drawn -/

namespace View

variable {v w : View α}

/-- An edge that is drawn in place of another leaves the node that the other leaves. -/
def SourceKept (v : View α) : Prop :=
  ∀ d, v.draft = some d → ∀ k, d.replacing = some k → d.source = k.source

omit [Scalar α] in
/-- A view in which the same edge is being drawn keeps to the source, too. -/
theorem SourceKept.of_draft (hv : v.SourceKept) (h : w.draft = v.draft) : w.SourceKept :=
  fun d hd => hv d (h.symm.trans hd)

omit [Scalar α] in
/-- A view in which no edge is being drawn keeps to the source. -/
theorem sourceKept_of_none (h : v.draft = none) : v.SourceKept := by
  intro d hd
  rw [h] at hd
  contradiction

/-- A press that takes the handle of an edge draws it from its own source. -/
theorem SourceKept.press (hv : v.SourceKept) (e : Editor α) (p : Positions α) (c : Point α)
    (additive shift : Bool) : (v.press e p c additive shift).1.SourceKept := by
  rw [View.press]
  cases v.grabbedEdge? e p c with
  | some k =>
      intro d hd l hl
      cases hd
      cases hl
      rfl
  | none =>
      cases v.nodeAt e.graph p c with
      | some k =>
          cases shift with
          | false => exact hv.of_draft rfl
          | true =>
              intro d hd l hl
              cases hd
              cases hl
      | none =>
          cases v.edgeAt e.graph p c with
          | some k => exact hv
          | none =>
              cases shift with
              | false => exact hv.of_draft rfl
              | true => exact hv

/-- A drag does not touch the edge being drawn. -/
theorem draft_dragTo (c : Point α) : (v.dragTo c).draft = v.draft := by
  rw [dragTo]
  split <;> rfl

/-- A pan does not touch the edge being drawn. -/
theorem draft_panTo (c : Point α) : (v.panTo c).draft = v.draft := by
  rw [panTo]
  split <;> rfl

/-- A move leads the edge being drawn to the pointer, and changes nothing else of it. -/
theorem draft_move (g : Graph α) (p : Positions α) (c : Point α) :
    (v.move g p c).draft = v.draft.map ({ · with cursor := v.toGraph c }) :=
  part_move draft (fun _ => draft_dragTo c) (fun _ => draft_panTo c) fun _ _ => rfl

/-- A move keeps to the source. -/
theorem SourceKept.move (hv : v.SourceKept) (g : Graph α) (p : Positions α) (c : Point α) :
    (v.move g p c).SourceKept := by
  intro d hd
  rw [draft_move] at hd
  obtain ⟨d', hd', rfl⟩ := Option.map_eq_some_iff.mp hd
  exact hv d' hd'

/-- All that can happen to a view keeps to the source. -/
theorem SourceKept.step (hv : v.SourceKept) (h : v.Step w) : w.SourceKept := by
  cases h with
  | press e p c additive shift => exact hv.press e p c additive shift
  | move g p c => exact hv.move g p c
  | release => exact sourceKept_of_none rfl
  | leave => exact sourceKept_of_none rfl
  | wheel c delta => exact hv.of_draft rfl
  | center p => exact hv.of_draft rfl
  | tick dt => exact hv.of_draft rfl
  | resize width height => exact hv.of_draft rfl

/-! ## The events of a view -/

/-- What a press reports keeps to the source. -/
theorem keepsSource_press {e : Editor α} {p : Positions α} {c : Point α} {additive shift : Bool}
    {event : Event α} (h : (v.press e p c additive shift).2 = some event) :
    event.KeepsSource := by
  rw [press] at h
  split at h
  · cases h
  · split at h
    · split at h <;> cases h
      trivial
    · split at h
      · cases h
        trivial
      · split at h <;> cases h
        trivial

/-- What a release reports keeps to the source. -/
theorem SourceKept.releaseEvent (hv : v.SourceKept) {g : Graph α} {p : Positions α}
    {c : Option (Point α)} {event : Event α} (h : v.releaseEvent g p c = some event) :
    event.KeepsSource := by
  rw [View.releaseEvent] at h
  cases hdraft : v.draft with
  | some d =>
      rw [hdraft] at h
      obtain ⟨target, -, rfl⟩ := Option.map_eq_some_iff.mp h
      rw [dropDraft]
      cases hreplacing : d.replacing with
      | some k => exact hv d hdraft k hreplacing
      | none => trivial
  | none =>
      simp only [hdraft] at h
      split at h
      · obtain ⟨k, -, rfl⟩ := Option.map_eq_some_iff.mp h
        trivial
      · split at h
        · cases h
          trivial
        · cases h

end View

omit [Scalar α] in
/-- What a key reports keeps to the source. -/
theorem Event.keepsSource_ofKey? {name : String} {modifier : Bool} {pointer : Point α}
    {e : Event α} (h : Event.ofKey? name modifier pointer = some e) : e.KeepsSource := by
  rw [ofKey?] at h
  split at h
  · cases h
    trivial
  · repeat' split at h
    all_goals cases h
    all_goals trivial

/-! ## A board in use -/

namespace Session

variable {s : Session α} {i : Input α}

/-- The graph is valid and styled, and the edge being drawn keeps to its source. -/
structure StyleKept (s : Session α) : Prop where
  valid : s.editor.graph.Valid
  styled : s.editor.graph.Styled
  sourceKept : ∀ v, s.view = some v → v.SourceKept

/-- What is done to the editor directly keeps the style; everything else is left to the board. -/
def Input.KeepsStyle : Input α → Prop
  | .edit action => action.KeepsStyle
  | _ => True

/-- Every event of the board keeps to the source. -/
theorem Source.keepsSource {e : Event α} (hs : ∀ v, s.view = some v → v.SourceKept)
    (h : s.Source e) : e.KeepsSource := by
  cases h with
  | press hview p c additive shift h => exact View.keepsSource_press h
  | release hview g p c h => exact (hs _ hview).releaseEvent h
  | key name modifier pointer h => exact Event.keepsSource_ofKey? h

/-- What an input does to the editor keeps the style. -/
theorem StyleKept.action? (hs : s.StyleKept) (hi : i.KeepsStyle) {a : Editor.Action α}
    (h : s.action? i = some a) : a.KeepsStyle := by
  obtain rfl | ⟨e, changed, hevent, rfl⟩ := action?_eq_some h
  · exact hi
  · exact (event_handle hevent).keepsSource hs.sourceKept

omit [Scalar α] in
/-- An input that keeps the style keeps to valid graphs. -/
theorem Input.KeepsStyle.valid (hi : i.KeepsStyle) : i.Valid := by
  cases i with
  | edit action => exact Editor.Action.KeepsStyle.valid hi
  | _ => trivial

/-- An input keeps the style. -/
theorem StyleKept.handle (hs : s.StyleKept) (hi : i.KeepsStyle) : (s.handle i).1.StyleKept := by
  refine ⟨valid_handle hs.valid hi.valid, ?_, ?_⟩
  · rw [editor_handle]
    cases haction : s.action? i with
    | none => exact hs.styled
    | some a => exact Editor.styled_perform hs.valid hs.styled (hs.action? hi haction)
  · exact forall_view_handle (fun _ _ => View.sourceKept_of_none rfl) (fun _ _ hv h => hv.step h)
      hs.sourceKept

section Run

variable (editor : Editor α) (hvalid : editor.graph.Valid) (hstyled : editor.graph.Styled)
  (layout : Layout) (page : Page α) (sizing : Sizing α)

include hvalid hstyled

/-- A board starts with the style kept. -/
theorem styleKept_start : (start editor layout page sizing).StyleKept := by
  constructor
  · rw [editor_start]
    exact hvalid
  · rw [editor_start]
    exact hstyled
  · intro v hview
    obtain ⟨width, height, rfl⟩ := exists_of_view_start editor layout page sizing hview
    exact View.sourceKept_of_none rfl

/-- However a board is used, every edge keeps the style that is decided by the node it leaves, and
whenever the board reports that an edge is led elsewhere, the edge still leaves the same node. -/
theorem styled_run {inputs : List (Input α)} (hinputs : ∀ i ∈ inputs, i.KeepsStyle) :
    let s := (start editor layout page sizing).run inputs
    s.editor.graph.Valid ∧ s.editor.graph.Styled ∧
      ∀ i edge source target changed,
        (s.handle i).2.event = some (.swapEdge edge source target, changed) →
          source = edge.source := by
  have hs : ((start editor layout page sizing).run inputs).StyleKept :=
    run_preserves (styleKept_start editor hvalid hstyled layout page sizing)
      fun s hs i hi => hs.handle (hinputs i hi)
  refine ⟨hs.valid, hs.styled, fun i edge source target changed hevent => ?_⟩
  exact (event_handle hevent).keepsSource hs.sourceKept

end Run

/-- A special node and two others. -/
def trioGraph : Graph Float :=
  .ofItems [⟨"a", "", .special, none, .origin⟩, ⟨"b", "", .empty, none, ⟨200.0, 0.0⟩⟩,
    ⟨"c", "", .poly, none, ⟨200.0, 200.0⟩⟩] []

theorem valid_trioGraph : trioGraph.Valid := by
  constructor <;> decide

/-- They have no edges, so the style is kept. -/
theorem styled_trioGraph : trioGraph.Styled := by
  simp [Graph.Styled, trioGraph, Graph.ofItems]

/-- A page whose window starts where the canvas does. -/
def bare : Page Float where
  hasWindow := true
  innerWidth := none
  innerHeight := none
  parent := none
  corner := .origin
  drawable := true
  attached := true

/-- The three nodes on a canvas where the first is 400 pixels from the left and 150 from above. -/
def trio : Session Float :=
  start (.start trioGraph true) .stored bare ⟨false, some 800.0, some 600.0⟩

/-- An edge is drawn from the special node to the second and led to the third by its handle. Then
its ends and itself are chosen and copied, and the first node goes and another comes. -/
def trioInputs : List (Input Float) :=
  [.press ⟨400.0, 150.0⟩ false true, .release ⟨600.0, 150.0⟩,
    .press ⟨570.0, 150.0⟩ false false, .release ⟨600.0, 350.0⟩,
    .press ⟨400.0, 150.0⟩ false false, .release ⟨400.0, 150.0⟩,
    .press ⟨600.0, 350.0⟩ true false, .release ⟨600.0, 350.0⟩,
    .press ⟨500.0, 250.0⟩ true false, .release ⟨500.0, 250.0⟩,
    .move ⟨300.0, 300.0⟩, .key "v" true, .edit .deleteStartNode, .edit .addStartNode]

/-- The copy of the edge has the style of the copy of the special node. -/
theorem styled_run_trio :
    let s := trio.run trioInputs
    s.editor.graph.edges = [⟨"a_1", "c_2", .special⟩] ∧
      s.editor.graph.Valid ∧ s.editor.graph.Styled ∧
        ∀ i edge source target changed,
          (s.handle i).2.event = some (.swapEdge edge source target, changed) →
            source = edge.source := by
  have hinputs : ∀ i ∈ trioInputs, i.KeepsStyle := by
    simp [trioInputs, Input.KeepsStyle, Editor.Action.KeepsStyle]
  have hedges : (trio.run trioInputs).editor.graph.edges = [⟨"a_1", "c_2", .special⟩] := by
    decide +kernel
  rw [trio] at hedges ⊢
  exact ⟨hedges,
    styled_run (.start trioGraph true) valid_trioGraph styled_trioGraph .stored bare _ hinputs⟩

end Session

end GraphBoard
