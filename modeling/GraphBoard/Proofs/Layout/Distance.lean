import GraphBoard.Proofs.Layout.Levelwise
import GraphBoard.Proofs.Layout.Walk
import GraphBoard.Scalar.Double

/-!
# GraphBoard.Proofs.Layout.Distance

How deep the vertical tree places a node: as far below as the node is from the first start that
reaches it.  Trees are grown one after the other on what the earlier ones left, and no shortest walk
is cut off by that, because what is left is always enclosed: no edge leads into it from elsewhere.

* `Frontier` — the invariant of one search, at each complete level; `Frontier.next` keeps it;
* `mem_search_iff`, `mem_search_rest_iff` — a search places what its start reaches, at its distance,
  and leaves the rest;
* `mem_grow_iff` — so does one search after the other, for the first start that reaches a node;
* `level_eq_distance` — the levels of the tree in these terms.
-/

namespace GraphBoard.Tree

variable {edges : List Edge} {region front waiting : List NodeKey} {s v : NodeKey} {d i : Nat}

/-! ## One tree -/

/-- The state of the search from `s` in a region when the level at depth `d` is complete: this front
of the search holds the nodes at that distance, and farther nodes wait. -/
structure Frontier (edges : List Edge) (region : List NodeKey) (s : NodeKey) (d : Nat)
    (front waiting : List NodeKey) : Prop where
  nodup : waiting.Nodup
  mem_front : ∀ v, v ∈ front ↔ v ∈ region ∧ IsDistance edges s v d
  mem_waiting : ∀ v, v ∈ waiting ↔ v ∈ region ∧ ∀ n ≤ d, ¬ Walk edges s n v

/-- A search starts with its front at distance zero. -/
theorem frontier_start (hnodup : region.Nodup) (hs : s ∈ region) :
    Frontier edges region s 0 [s] (region.erase s) where
  nodup := hnodup.erase s
  mem_front v := by
    rw [List.mem_singleton, isDistance_zero_iff]
    constructor
    · intro h
      exact ⟨h ▸ hs, h⟩
    · intro h
      exact h.2
  mem_waiting v := by
    rw [hnodup.mem_erase_iff, and_comm]
    simp [walk_zero_iff]

namespace Frontier

/-- The next level is the front at the next distance. -/
theorem next (h : Frontier edges region s d front waiting) (hr : Enclosed edges region) :
    Frontier edges region s (d + 1) (claim (front.flatMap (targets edges)) waiting).1
      (claim (front.flatMap (targets edges)) waiting).2 := by
  have hfound : ∀ v, v ∈ waiting ∧ v ∈ front.flatMap (targets edges) ↔
      v ∈ region ∧ IsDistance edges s v (d + 1) := by
    intro v
    simp only [List.mem_flatMap, mem_targets]
    constructor
    · intro hv
      obtain ⟨hwaits, u, hu, e, he, rfl, rfl⟩ := hv
      obtain ⟨hregion, hfar⟩ := (h.mem_waiting _).mp hwaits
      have hwalk : Walk edges s (d + 1) e.target := .along ((h.mem_front _).mp hu).2.walk he
      refine ⟨hregion, hwalk, fun n hn => ?_⟩
      by_contra hlt
      exact hfar n (by omega) hn
    · intro hv
      obtain ⟨hregion, hdist⟩ := hv
      obtain ⟨e, he, rfl, hpred⟩ := hdist.exists_pred
      have hsource : e.source ∈ front := (h.mem_front _).mpr ⟨hr e he hregion, hpred⟩
      refine ⟨(h.mem_waiting _).mpr ⟨hregion, fun n hn hw => ?_⟩, e.source, hsource, e, he,
        rfl, rfl⟩
      have hle := hdist.le_of_walk n hw
      omega
  refine ⟨?_, fun v => ?_, fun v => ?_⟩
  · have hperm := claim_perm (front.flatMap (targets edges)) waiting
    exact (List.nodup_append.mp (hperm.nodup_iff.mpr h.nodup)).2.1
  · rw [mem_claim_fst h.nodup, hfound]
  · rw [mem_claim_snd h.nodup]
    constructor
    · intro hv
      obtain ⟨hregion, hfar⟩ := (h.mem_waiting v).mp hv.1
      refine ⟨hregion, fun n hn hw => ?_⟩
      by_cases hle : n ≤ d
      · exact hfar n hle hw
      · have he : n = d + 1 := by omega
        subst he
        have hdist : IsDistance edges s v (d + 1) := by
          refine ⟨hw, fun m hm => ?_⟩
          by_contra hlt
          exact hfar m (by omega) hm
        exact hv.2 ((hfound v).mpr ⟨hregion, hdist⟩).2
    · intro hv
      have hwaits : v ∈ waiting :=
        (h.mem_waiting v).mpr ⟨hv.1, fun n hn => hv.2 n (by omega)⟩
      refine ⟨hwaits, fun hmem => ?_⟩
      have hdist := ((hfound v).mp ⟨hwaits, hmem⟩).2
      exact hv.2 (d + 1) (Nat.le_refl _) hdist.walk

/-- As long as some node is that far, the front is not empty. -/
theorem ne_nil (h : Frontier edges region s d front waiting) (hr : Enclosed edges region)
    (hv : v ∈ region) (hd : d ≤ i) (hi : IsDistance edges s v i) : front ≠ [] := by
  obtain ⟨n, rfl⟩ := Nat.exists_eq_add_of_le hd
  obtain ⟨u, hu, hw⟩ := hi.exists_of_le
  have hregion : u ∈ region := hr.mem_of_reaches ⟨n, hw⟩ hv
  exact List.ne_nil_of_mem ((h.mem_front u).mpr ⟨hregion, hu⟩)

/-- The levels hold the nodes of the region at their distances. -/
theorem mem_withDepth_iff (h : Frontier edges region s d front waiting)
    (hr : Enclosed edges region) :
    (v, i) ∈ withDepth d (expansion edges front waiting).1 ↔
      v ∈ region ∧ d ≤ i ∧ IsDistance edges s v i := by
  fun_induction expansion edges front waiting generalizing d
  case case1 waiting =>
    rw [withDepth]
    refine iff_of_false List.not_mem_nil fun hv => ?_
    exact h.ne_nil hr hv.1 hv.2.1 hv.2.2 rfl
  case case2 k ks waiting found later ih =>
    have hfront := h.mem_front v
    rw [mem_withDepth_cons, ih (h.next hr), hfront]
    constructor
    · intro hv
      obtain ⟨⟨hregion, hdist⟩, rfl⟩ | ⟨hregion, hle, hdist⟩ := hv
      · exact ⟨hregion, Nat.le_refl _, hdist⟩
      · exact ⟨hregion, by omega, hdist⟩
    · intro hv
      obtain ⟨hregion, hle, hdist⟩ := hv
      by_cases he : i = d
      · subst he
        exact Or.inl ⟨⟨hregion, hdist⟩, rfl⟩
      · exact Or.inr ⟨hregion, by omega, hdist⟩

/-- Left waiting are the nodes of the region that are not reached. -/
theorem mem_rest_iff (h : Frontier edges region s d front waiting) (hr : Enclosed edges region) :
    v ∈ (expansion edges front waiting).2 ↔ v ∈ region ∧ ¬ Reaches edges s v := by
  fun_induction expansion edges front waiting generalizing d
  case case1 waiting =>
    rw [h.mem_waiting]
    refine and_congr_right fun hv => ⟨fun hfar hreach => ?_, fun hnot n _ hw => hnot ⟨n, hw⟩⟩
    obtain ⟨i, hi⟩ := hreach.exists_isDistance
    have hd : d ≤ i := by
      by_contra hlt
      exact hfar i (by omega) hi.walk
    exact h.ne_nil hr hv hd hi rfl
  case case2 k ks waiting found later ih =>
    exact ih (h.next hr)

end Frontier

/-- A search from one node goes level by level. -/
theorem search_start (edges : List Edge) (s : NodeKey) (waiting : List NodeKey) :
    search edges waiting [(s, 0)] =
      (withDepth 0 (expansion edges [s] waiting).1, (expansion edges [s] waiting).2) :=
  search_eq_expansion edges [s] waiting 0

/-- A search places the nodes that are reached at their distances. -/
theorem mem_search_iff (hnodup : region.Nodup) (hr : Enclosed edges region) (hs : s ∈ region) :
    (v, d) ∈ (search edges (region.erase s) [(s, 0)]).1 ↔
      v ∈ region ∧ IsDistance edges s v d := by
  rw [search_start, (frontier_start hnodup hs).mem_withDepth_iff hr]
  simp

/-- A search leaves those waiting that it does not reach. -/
theorem mem_search_rest_iff (hnodup : region.Nodup) (hr : Enclosed edges region)
    (hs : s ∈ region) :
    v ∈ (search edges (region.erase s) [(s, 0)]).2 ↔ v ∈ region ∧ ¬ Reaches edges s v := by
  rw [search_start, (frontier_start hnodup hs).mem_rest_iff hr]

/-- A search from a node takes keys off the waiting list and places them. -/
theorem search_perm (edges : List Edge) (hs : s ∈ region) :
    ((search edges (region.erase s) [(s, 0)]).1.map Prod.fst ++
      (search edges (region.erase s) [(s, 0)]).2).Perm region := by
  rw [search_start, map_fst_withDepth]
  exact (expansion_perm edges [s] (region.erase s)).trans (List.perm_cons_erase hs).symm

/-! ## One tree after the other -/

/-- What is left waiting is enclosed again. -/
theorem enclosed_search_rest (hnodup : region.Nodup) (hr : Enclosed edges region)
    (hs : s ∈ region) : Enclosed edges (search edges (region.erase s) [(s, 0)]).2 := by
  intro e he htarget
  rw [mem_search_rest_iff hnodup hr hs] at htarget ⊢
  exact ⟨hr e he htarget.1, fun hsource => htarget.2 (reaches_target hsource he)⟩

/-- What is left waiting holds no key twice. -/
theorem nodup_search_rest (edges : List Edge) (hnodup : region.Nodup) (hs : s ∈ region) :
    (search edges (region.erase s) [(s, 0)]).2.Nodup :=
  (List.nodup_append.mp ((search_perm edges hs).nodup_iff.mpr hnodup)).2.1

/-- The trees place each node at its distance from the first start that reaches it. -/
theorem mem_grow_iff {starts : List NodeKey} (hnodup : region.Nodup)
    (hr : Enclosed edges region) :
    (v, d) ∈ grow edges starts region ↔
      v ∈ region ∧ ∃ s, FirstStart edges starts v s ∧ IsDistance edges s v d := by
  induction starts generalizing region with
  | nil =>
      rw [grow]
      exact iff_of_false List.not_mem_nil fun ⟨_, s, hs, _⟩ => not_firstStart_nil hs
  | cons t starts ih =>
      rw [grow]
      by_cases ht : t ∈ region
      · rw [if_pos ht, List.mem_append, mem_search_iff hnodup hr ht,
          ih (nodup_search_rest edges hnodup ht) (enclosed_search_rest hnodup hr ht),
          mem_search_rest_iff hnodup hr ht]
        constructor
        · intro hv
          obtain ⟨hregion, hdist⟩ | ⟨⟨hregion, hnot⟩, s, hs, hdist⟩ := hv
          · exact ⟨hregion, t, firstStart_cons.mpr (Or.inl ⟨hdist.reaches, rfl⟩), hdist⟩
          · exact ⟨hregion, s, firstStart_cons.mpr (Or.inr ⟨hnot, hs⟩), hdist⟩
        · intro hv
          obtain ⟨hregion, s, hs, hdist⟩ := hv
          obtain ⟨-, rfl⟩ | ⟨hnot, hs⟩ := firstStart_cons.mp hs
          · exact Or.inl ⟨hregion, hdist⟩
          · exact Or.inr ⟨⟨hregion, hnot⟩, s, hs, hdist⟩
      · -- an earlier tree has the start, and with it all that it reaches
        rw [if_neg ht, ih hnodup hr]
        refine and_congr_right fun hv => ?_
        have hnot : ¬ Reaches edges t v := fun hreach => ht (hr.mem_of_reaches hreach hv)
        simp [firstStart_cons, hnot]

/-! ## The levels -/

section Levels

variable {nodes : List (NodeKey × Nat)}

/-- The nodes of a level are those placed at its depth. -/
theorem mem_level : v ∈ level nodes d ↔ (v, d) ∈ nodes := by
  simp [level]

/-- The height counts one level more than the greatest depth. -/
theorem lt_foldl_height_iff (h : Nat) :
    d < nodes.foldl (fun h n => max h (n.2 + 1)) h ↔ d < h ∨ ∃ n ∈ nodes, d ≤ n.2 := by
  induction nodes generalizing h with
  | nil => simp
  | cons n nodes ih =>
      have hmax : d < max h (n.2 + 1) ↔ d < h ∨ d ≤ n.2 := by omega
      rw [List.foldl_cons, ih, hmax, or_assoc]
      simp

/-- A depth is below the height exactly if some node is placed there or deeper. -/
theorem lt_height_iff : d < height nodes ↔ ∃ n ∈ nodes, d ≤ n.2 := by
  rw [height, lt_foldl_height_iff]
  simp

end Levels

variable {α : Type} {g : Graph α}

/-- A node is on a level exactly if it is placed at its depth. -/
theorem mem_levels_iff : v ∈ (levels g).getD d [] ↔ (v, d) ∈ placed g := by
  rw [levels, List.getD_eq_getElem?_getD, List.getElem?_map]
  by_cases h : d < height (placed g)
  · rw [List.getElem?_range h]
    exact mem_level
  · rw [List.getElem?_eq_none (by simpa using h)]
    refine iff_of_false List.not_mem_nil fun hv => ?_
    exact h (lt_height_iff.mpr ⟨(v, d), hv, Nat.le_refl d⟩)

/-- The keys of a valid graph are enclosed. -/
theorem enclosed_keys (hg : g.Valid) : Enclosed g.edges g.keys := fun e he _ =>
  hg.source_mem e he

/-- A node is placed at its distance from the first start that reaches it. -/
theorem mem_placed_iff (hg : g.Valid) :
    (v, d) ∈ placed g ↔
      v ∈ g.keys ∧ ∃ s, FirstStart g.edges (starts g) v s ∧ IsDistance g.edges s v d :=
  mem_grow_iff hg.keys_nodup (enclosed_keys hg)

/-- Every node is reached from a start. -/
theorem exists_firstStart_of_mem_keys (hv : v ∈ g.keys) :
    ∃ s, FirstStart g.edges (starts g) v s :=
  exists_firstStart (List.mem_append_right _ hv) (.refl g.edges v)

/-- A diamond below one root, to whose foot another root is nearer, and a cycle that leads there. -/
def branching : Graph Float :=
  .ofItems
    (["root", "left", "right", "foot", "other", "ring1", "ring2"].map fun k =>
      ⟨k, "", .empty, none, .origin⟩)
    [⟨"root", "left", .empty⟩, ⟨"root", "right", .empty⟩, ⟨"left", "foot", .empty⟩,
      ⟨"right", "foot", .empty⟩, ⟨"right", "foot", .special⟩, ⟨"other", "foot", .empty⟩,
      ⟨"ring1", "ring2", .empty⟩, ⟨"ring2", "ring1", .empty⟩, ⟨"ring2", "foot", .empty⟩]

theorem valid_branching : branching.Valid := by
  constructor <;> decide

end GraphBoard.Tree
