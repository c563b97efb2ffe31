import GraphBoard.Layout.Basic
import GraphBoard.Proofs.Layout.Distance
import GraphBoard.Proofs.Layout.Rounds
import Mathlib.Data.List.Perm.Subperm

/-!
# GraphBoard.Proofs.Layout.Placement

Every layout places every node, and nothing else.  For two of the layouts the places are a list over
the nodes; for the vertical tree they are the levels, end to end:

* `flatten_levels_perm` — the levels are the keys of the nodes in another order, so each comes once;
* `exists_placed_of_le` — above a placed node there is one in each level, on a walk down to it;
* `mem_map_fst_entries_iff` — each layout has places for the keys of the nodes;
* `positions_total` — all this together, and that the loops that grow the tree end.
-/

namespace GraphBoard.Tree

variable {edges : List Edge} {region : List NodeKey} {u v : NodeKey} {d i n : Nat}

/-! ## Each key once -/

/-- The trees place nodes of the region, none of them twice. -/
theorem grow_subperm (edges : List Edge) (starts region : List NodeKey) :
    ((grow edges starts region).map Prod.fst).Subperm region := by
  induction starts generalizing region with
  | nil => exact List.nil_subperm
  | cons s starts ih =>
      rw [grow]
      by_cases hs : s ∈ region
      · rw [if_pos hs, List.map_append]
        have hrest := ih (search edges (region.erase s) [(s, 0)]).2
        exact ((List.subperm_append_left _).mpr hrest).trans (search_perm edges hs).subperm
      · rw [if_neg hs]
        exact ih region

section Levels

variable {nodes : List (NodeKey × Nat)}

/-- A level holds no node twice. -/
theorem nodup_level (h : (nodes.map Prod.fst).Nodup) (d : Nat) : (level nodes d).Nodup :=
  h.sublist (List.filter_sublist.map Prod.fst)

/-- Two levels hold no node in common. -/
theorem disjoint_level (h : (nodes.map Prod.fst).Nodup) (hne : d ≠ i) :
    (level nodes d).Disjoint (level nodes i) := by
  intro v hd hi
  have he : (v, d) = (v, i) := List.inj_on_of_nodup_map h (mem_level.mp hd) (mem_level.mp hi) rfl
  exact hne (congrArg Prod.snd he)

end Levels

variable {α : Type} {g : Graph α}

/-- No node of a valid graph is placed twice. -/
theorem nodup_placed (hg : g.Valid) : ((placed g).map Prod.fst).Nodup := by
  obtain ⟨ks, hperm, hsub⟩ := grow_subperm g.edges (starts g) g.keys
  exact hperm.nodup_iff.mp (hg.keys_nodup.sublist hsub)

/-- No node is on two levels. -/
theorem nodup_flatten_levels (hg : g.Valid) : (levels g).flatten.Nodup := by
  have hnodup := nodup_placed hg
  rw [levels, List.nodup_flatten, List.pairwise_map]
  refine ⟨fun l hl => ?_, List.pairwise_lt_range.imp fun hlt => ?_⟩
  · obtain ⟨d, -, rfl⟩ := List.mem_map.mp hl
    exact nodup_level hnodup d
  · exact disjoint_level hnodup (Nat.ne_of_lt hlt)

/-- A node is on some level exactly if it is in the graph. -/
theorem mem_flatten_levels_iff (hg : g.Valid) : v ∈ (levels g).flatten ↔ v ∈ g.keys := by
  have hlevels : v ∈ (levels g).flatten ↔ ∃ d, (v, d) ∈ placed g := by
    rw [levels, List.mem_flatten]
    constructor
    · intro h
      obtain ⟨l, hl, hv⟩ := h
      obtain ⟨d, -, rfl⟩ := List.mem_map.mp hl
      exact ⟨d, mem_level.mp hv⟩
    · intro h
      obtain ⟨d, hd⟩ := h
      have hlt : d < height (placed g) := lt_height_iff.mpr ⟨(v, d), hd, Nat.le_refl d⟩
      exact ⟨level (placed g) d, List.mem_map_of_mem (List.mem_range.mpr hlt), mem_level.mpr hd⟩
  rw [hlevels]
  constructor
  · intro h
    obtain ⟨d, hd⟩ := h
    exact ((mem_placed_iff hg).mp hd).1
  · intro hv
    obtain ⟨s, hs⟩ := exists_firstStart_of_mem_keys hv
    obtain ⟨d, hd⟩ := hs.reaches.exists_isDistance
    exact ⟨d, (mem_placed_iff hg).mpr ⟨hv, s, hs, hd⟩⟩

/-- The levels hold the nodes of the graph in another order. -/
theorem flatten_levels_perm (hg : g.Valid) : (levels g).flatten.Perm g.keys :=
  (List.perm_ext_iff_of_nodup (nodup_flatten_levels hg) hg.keys_nodup).mpr fun _ =>
    mem_flatten_levels_iff hg

/-! ## Each level below the other -/

/-- On the way to a node that is placed there is one at every lesser depth. -/
theorem exists_placed_of_le (hg : g.Valid) (h : (v, d + n) ∈ placed g) :
    ∃ u, (u, d) ∈ placed g ∧ Walk g.edges u n v := by
  obtain ⟨hv, s, hs, hdist⟩ := (mem_placed_iff hg).mp h
  obtain ⟨u, hu, hw⟩ := hdist.exists_of_le
  have hreach : Reaches g.edges u v := ⟨n, hw⟩
  have hkey : u ∈ g.keys := (enclosed_keys hg).mem_of_reaches hreach hv
  exact ⟨u, (mem_placed_iff hg).mpr ⟨hkey, s, hs.of_reaches hu.reaches hreach, hu⟩, hw⟩

/-- No level is empty. -/
theorem ne_nil_of_mem_levels (hg : g.Valid) {l : List NodeKey} (hl : l ∈ levels g) : l ≠ [] := by
  obtain ⟨d, hd, rfl⟩ := List.mem_map.mp hl
  obtain ⟨⟨v, i⟩, hv, hle⟩ := lt_height_iff.mp (List.mem_range.mp hd)
  obtain ⟨n, rfl⟩ := Nat.exists_eq_add_of_le hle
  obtain ⟨u, hu, -⟩ := exists_placed_of_le hg hv
  exact List.ne_nil_of_mem (mem_level.mpr hu)

/-- To each node of a lower level there leads an edge from the level above. -/
theorem exists_edge_from_level_above (hg : g.Valid) (hv : v ∈ (levels g).getD (d + 1) []) :
    ∃ e ∈ g.edges, e.target = v ∧ e.source ∈ (levels g).getD d [] := by
  obtain ⟨u, hu, hw⟩ := exists_placed_of_le hg (mem_levels_iff.mp hv)
  obtain ⟨e, he, htarget, hsource⟩ := walk_succ_iff.mp hw
  refine ⟨e, he, htarget, mem_levels_iff.mpr ?_⟩
  rw [walk_zero_iff.mp hsource]
  exact hu

end GraphBoard.Tree

namespace GraphBoard

/-! ## Places -/

/-- A key has a place exactly if it is listed. -/
theorem Positions.isSome_get?_iff {α : Type} {p : Positions α} {k : NodeKey} :
    (p.get? k).isSome ↔ k ∈ p.entries.map Prod.fst := by
  rw [get?, List.lookup_isSome_iff, List.mem_map]
  simp only [beq_iff_eq, eq_comm (a := k)]

namespace Layout

open GraphBoard.Tree

variable {α : Type} [Scalar α] {g : Graph α}

/-- The places of a level are those of its nodes in their order. -/
theorem map_fst_levelEntries (l : List NodeKey) (depth : Nat) :
    (levelEntries l depth : List (NodeKey × Point α)).map Prod.fst = l := by
  rw [levelEntries, List.map_map]
  exact List.zipIdx_map_fst 0 l

/-- The places of the levels from some depth on are places of their nodes, level after level. -/
theorem map_fst_flatMap_levelEntries (ls : List (List NodeKey)) (i : Nat) :
    ((ls.zipIdx i).flatMap fun (l, depth) =>
      (levelEntries l depth : List (NodeKey × Point α))).map Prod.fst = ls.flatten := by
  induction ls generalizing i with
  | nil => rfl
  | cons l ls ih =>
      rw [List.zipIdx_cons, List.flatMap_cons, List.map_append, map_fst_levelEntries, ih,
        List.flatten_cons]

/-- Each layout has places for the keys of the nodes. -/
theorem mem_map_fst_entries_iff (hg : g.Valid) (l : Layout) {k : NodeKey} :
    k ∈ (l.positions g).entries.map Prod.fst ↔ k ∈ g.keys := by
  cases l with
  | stored => rw [positions, List.map_map]; rfl
  | snapToGrid => rw [positions, List.map_map]; rfl
  | verticalTree =>
      rw [positions, map_fst_flatMap_levelEntries]
      exact mem_flatten_levels_iff hg

/-- Every layout has a place for the key of each node, and for no other key.  The vertical tree
comes to an end, its levels are the nodes, once each, and no level is empty; what is not in the top
level is below a node that an edge joins to it. -/
theorem positions_total (hg : g.Valid) :
    (∀ (l : Layout) (k : NodeKey),
      ((l.positions g).get? k).isSome ↔ ∃ n ∈ g.nodes, n.key = k) ∧
    (∃ n ≤ 3 * g.nodes.length, ∃ p, Progress.after? g.edges n (.start g) = some p ∧
      p.advance? g.edges = none ∧ p.placed = placed g) ∧
    (levels g).flatten.Perm g.keys ∧
    (∀ l ∈ levels g, l ≠ []) ∧
    ∀ d, ∀ v ∈ (levels g).getD (d + 1) [],
      ∃ e ∈ g.edges, e.target = v ∧ e.source ∈ (levels g).getD d [] := by
  refine ⟨fun l k => ?_, ?_, flatten_levels_perm hg, fun _ hl => ne_nil_of_mem_levels hg hl,
    fun _ _ hv => exists_edge_from_level_above hg hv⟩
  · rw [Positions.isSome_get?_iff, mem_map_fst_entries_iff hg, Graph.mem_keys]
  · obtain ⟨n, hn, p, hafter, hend, hplaced⟩ := Progress.ends g.edges (.start g)
    refine ⟨n, Nat.le_trans hn (Progress.left_start_le g), p, hafter, hend, ?_⟩
    rw [hplaced, Progress.outcome_start]

/-- Cycles, a diamond and two trees that meet are no trouble. -/
theorem positions_total_branching :
    branching.Valid ∧ (∀ (l : Layout) (k : NodeKey),
      ((l.positions branching).get? k).isSome ↔ ∃ n ∈ branching.nodes, n.key = k) ∧
    (∃ n ≤ 3 * branching.nodes.length, ∃ p,
      Progress.after? branching.edges n (.start branching) = some p ∧
      p.advance? branching.edges = none ∧ p.placed = placed branching) ∧
    (levels branching).flatten.Perm branching.keys ∧
    (∀ l ∈ levels branching, l ≠ []) ∧
    ∀ d, ∀ v ∈ (levels branching).getD (d + 1) [],
      ∃ e ∈ branching.edges, e.target = v ∧ e.source ∈ (levels branching).getD d [] :=
  ⟨valid_branching, positions_total valid_branching⟩

end Layout

end GraphBoard
