import GraphBoard.Document.Load
import Mathlib.Data.List.Nodup

/-!
# GraphBoard.Proofs.Document.Load

A graph that is loaded is valid.  Repeated keys are found by a scan that remembers the keys it has
passed, so the scan finds none exactly if the keys differ among themselves and from those in
memory; the edges are those of the description that may stand in a graph.
-/

namespace GraphBoard

namespace Document

/-- No key is found repeated exactly if there is none. -/
theorem firstRepeated_eq_none_iff {seen ks : List NodeKey} :
    firstRepeated seen ks = none ↔ ks.Nodup ∧ ∀ k ∈ ks, k ∉ seen := by
  induction ks generalizing seen with
  | nil => simp [firstRepeated]
  | cons k ks ih =>
      rw [firstRepeated]
      by_cases hk : k ∈ seen
      · simp [hk]
      · rw [if_neg hk, ih, List.nodup_cons]
        constructor
        · intro h
          obtain ⟨hnodup, hnew⟩ := h
          have hks : k ∉ ks := fun hmem => hnew k hmem List.mem_cons_self
          refine ⟨⟨hks, hnodup⟩, fun l hl => ?_⟩
          cases List.mem_cons.mp hl with
          | inl he => rw [he]; exact hk
          | inr hl => exact fun hmem => hnew l hl (List.mem_cons_of_mem k hmem)
        · intro h
          obtain ⟨⟨hks, hnodup⟩, hnew⟩ := h
          refine ⟨hnodup, fun l hl hmem => ?_⟩
          cases List.mem_cons.mp hmem with
          | inl he => exact hks (he ▸ hl)
          | inr hmem => exact hnew l (List.mem_cons_of_mem k hl) hmem

/-- A description is a board exactly if its keys are distinct, and of its edges those are kept that
join two different nodes. -/
theorem graph_eq_ok_iff {d : Document} {g : Graph Float} :
    d.graph = .ok g ↔ (d.nodes.map NodeRecord.key).Nodup ∧
      g = .ofItems (d.nodes.map NodeRecord.node) (d.edges.filter fun e =>
        e.source != e.target && (d.nodes.map NodeRecord.key).contains e.source &&
          (d.nodes.map NodeRecord.key).contains e.target) := by
  have hscan : firstRepeated [] (d.nodes.map NodeRecord.key) = none ↔
      (d.nodes.map NodeRecord.key).Nodup := by
    rw [firstRepeated_eq_none_iff]
    simp
  simp only [graph]
  cases h : firstRepeated [] (d.nodes.map NodeRecord.key) with
  | none => simp [hscan.mp h, eq_comm]
  | some key =>
      have hrepeated : ¬ (d.nodes.map NodeRecord.key).Nodup := fun hnodup => by
        rw [hscan.mpr hnodup] at h
        contradiction
      simp [hrepeated]

/-- The board of a description is valid. -/
theorem valid_of_graph_eq_ok {d : Document} {g : Graph Float} (h : d.graph = .ok g) :
    g.Valid := by
  obtain ⟨hnodup, rfl⟩ := graph_eq_ok_iff.mp h
  have hkeys : (d.nodes.map NodeRecord.node).map Node.key = d.nodes.map NodeRecord.key := by
    rw [List.map_map]
    rfl
  -- an edge is kept if it is no loop and both its ends are keys of the description
  have hedge {e : Edge} (he : e ∈ d.edges.filter fun e =>
      e.source != e.target && (d.nodes.map NodeRecord.key).contains e.source &&
        (d.nodes.map NodeRecord.key).contains e.target) :
      e.source ≠ e.target ∧ e.source ∈ d.nodes.map NodeRecord.key ∧
        e.target ∈ d.nodes.map NodeRecord.key := by
    have hkept := (List.mem_filter.mp he).2
    simp only [Bool.and_eq_true, bne_iff_ne, List.contains_iff_mem] at hkept
    exact ⟨hkept.1.1, hkept.1.2, hkept.2⟩
  constructor
  · rw [Graph.keys, Graph.ofItems, hkeys]
    exact hnodup
  · intro e he
    rw [Graph.keys, Graph.ofItems, hkeys]
    exact (hedge he).2.1
  · intro e he
    rw [Graph.keys, Graph.ofItems, hkeys]
    exact (hedge he).2.2
  · intro e he
    exact (hedge he).1

end Document

/-- A board that is loaded is valid. -/
theorem Graph.valid_of_load_eq_ok {s : String} {g : Graph Float} (h : load s = .ok g) :
    g.Valid := by
  rw [load] at h
  cases hp : Document.parse s with
  | error fault => simp only [hp] at h; contradiction
  | ok d =>
      simp only [hp] at h
      exact Document.valid_of_graph_eq_ok h

end GraphBoard
