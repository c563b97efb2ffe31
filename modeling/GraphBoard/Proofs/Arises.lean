import GraphBoard.Proofs.Document.Load
import GraphBoard.Proofs.Editor.Sound
import GraphBoard.Proofs.Graph.Run
import GraphBoard.Proofs.Sample

/-!
# GraphBoard.Proofs.Arises

The graphs that can come about, and that they are valid.  `Arises` closes the graphs that are
there to begin with under runs of edits and under sessions of an editor, whose actions may bring
in graphs that came about in any of these ways themselves.
-/

namespace GraphBoard.Graph

/-- The graphs that come about in the use of this library: those to begin with, what edits make of
such a graph, and what is in an editor that was started on such a graph and was given such
graphs. -/
inductive Arises : Graph Float → Prop where
  | empty : Arises .empty
  | load {s : String} {g : Graph Float} (h : Graph.load s = .ok g) : Arises g
  | bundled : Arises Sample.bundled
  | chain (n : Nat) : Arises (Sample.chain n)
  | edit {g : Graph Float} (hg : Arises g) (edits : List (Edit Float)) : Arises (g.editAll edits)
  | session {g : Graph Float} (hg : Arises g) (multiselect : Bool)
      (actions : List (Editor.Action Float))
      (h : ∀ g', .replaceGraph g' ∈ actions → Arises g') :
      Arises ((Editor.start g multiselect).run actions).graph

/-- A graph that arises in any of these ways is valid. -/
theorem Arises.valid {g : Graph Float} (h : g.Arises) : g.Valid := by
  induction h with
  | empty => exact valid_empty
  | load h => exact valid_of_load_eq_ok h
  | bundled => exact Sample.valid_bundled
  | chain n => exact Sample.valid_chain n
  | edit _ edits ih => exact ih.editAll edits
  | session _ multiselect actions _ ih ihreplaced =>
      refine ((Editor.sound_start ih multiselect).run fun a ha => ?_).valid
      cases a with
      | replaceGraph g' => exact ihreplaced g' ha
      | event e => trivial
      | addStartNode => trivial
      | deleteStartNode => trivial

/-- In whatever way a graph comes about, the keys of its nodes differ and every edge joins two
different nodes of it. -/
theorem wellFormed_of_arises {g : Graph Float} (h : g.Arises) :
    (g.nodes.map Node.key).Nodup ∧ ∀ e ∈ g.edges,
      (∃ n ∈ g.nodes, n.key = e.source) ∧ (∃ n ∈ g.nodes, n.key = e.target) ∧
        e.source ≠ e.target := by
  have hg := h.valid
  refine ⟨hg.keys_nodup, fun e he => ⟨?_, ?_, hg.no_loop e he⟩⟩
  · exact mem_keys.mp (hg.source_mem e he)
  · exact mem_keys.mp (hg.target_mem e he)

/-- The text of two nodes and of two edges, of which one is a loop and is dropped. -/
def pairText : String :=
  "\x7b\"nodes\":[[\"a\"],[\"a_1\"]],\"edges\":[[\"a\",\"a_1\"],[\"a\",\"a\"]]\x7d"

/-- A loaded board replaces a chain in an editor and is copied there; then it is edited by name. -/
theorem wellFormed_of_arises_loaded :
    ∃ g, load pairText = .ok g ∧
      let g' := ((Editor.start (Sample.chain 3) true).run [.replaceGraph g,
        .event (.selectNode "a" true), .event (.selectNode "a_1" true),
        .event (.selectEdge ⟨"a", "a_1"⟩ true), .event (.paste ⟨10.0, 10.0⟩)]).graph.editAll
        [.insertEdge "a_2" "a_1" .special, .retargetEdge ⟨"a", "a_1"⟩ "a_1_3" "a",
          .duplicate (.ofKeys ["gone", "a_2", "a_1"] [⟨"a_2", "a_1"⟩]) ⟨0.0, 0.0⟩, .deleteNode "a"]
      (g'.nodes.map Node.key).Nodup ∧ ∀ e ∈ g'.edges,
        (∃ n ∈ g'.nodes, n.key = e.source) ∧ (∃ n ∈ g'.nodes, n.key = e.target) ∧
          e.source ≠ e.target := by
  have hload : (load pairText).toBool = true := by decide +kernel
  cases h : load pairText with
  | error fault =>
      rw [h] at hload
      contradiction
  | ok g =>
      have hg : g.Arises := .load h
      refine ⟨g, rfl, wellFormed_of_arises (.edit (.session (.chain 3) true _ fun g' hg' => ?_) _)⟩
      have he : g' = g := by simpa using hg'
      rw [he]
      exact hg

end GraphBoard.Graph
